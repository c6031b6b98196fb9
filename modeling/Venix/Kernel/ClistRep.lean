/-
  The blocks of one character queue.

  `Blocks next b l cf cl`: the queue begins at `cf` in the block `b`, goes on through the blocks
  `l` and ends before `cl` in the last of them. `cells` are the addresses of its characters.
  Characters are taken off at the front (`cells_drop`) and put in at the end, in the last block
  (`blocks_snoc`) or in a new one (`blocks_link`).
-/
import Venix.Kernel.Clist
import Venix.Lib.Chain

namespace Venix.Kernel

open Venix.Lib

def cells : Nat → List Nat → Nat → Nat → List Nat
  | _, [], cf, cl => List.range' cf (cl - cf)
  | b, b' :: l, cf, cl => List.range' cf (b + 16 - cf) ++ cells b' l (b' + 2) cl

def Blocks (next : Nat → Option Nat) : Nat → List Nat → Nat → Nat → Prop
  | b, [], cf, cl => b + 2 ≤ cf ∧ cf < cl ∧ cl ≤ b + 16 ∧ next b = none
  | b, b' :: l, cf, cl => b + 2 ≤ cf ∧ cf < b + 16 ∧ next b = some b' ∧ Blocks next b' l (b' + 2) cl

/-- The block that the queue ends in. -/
def lastBlock : Nat → List Nat → Nat
  | b, [] => b
  | _, b' :: l => lastBlock b' l

variable {next next' : Nat → Option Nat} {b cf cl : Nat} {l : List Nat}

theorem lastBlock_mem (b : Nat) (l : List Nat) : lastBlock b l ∈ b :: l := by
  induction l generalizing b with
  | nil => exact List.mem_singleton_self b
  | cons b' l ih => exact List.mem_cons_of_mem b (ih b')

theorem Blocks.congr (h : Blocks next b l cf cl) (he : ∀ x ∈ b :: l, next' x = next x) :
    Blocks next' b l cf cl := by
  induction l generalizing b cf with
  | nil =>
    refine ⟨h.1, h.2.1, h.2.2.1, ?_⟩
    rw [he b (by simp)]
    exact h.2.2.2
  | cons b' l ih =>
    refine ⟨h.1, h.2.1, ?_, ih h.2.2.2 fun x hx => he x (List.mem_cons_of_mem b hx)⟩
    rw [he b (by simp)]
    exact h.2.2.1

theorem Blocks.chain (h : Blocks next b l cf cl) : Chain next (some b) (b :: l) := by
  induction l generalizing b cf with
  | nil => exact ⟨rfl, h.2.2.2⟩
  | cons b' l ih =>
    refine ⟨rfl, ?_⟩
    rw [h.2.2.1]
    exact ih h.2.2.2

/-- Where the queue begins and ends. -/
theorem Blocks.bounds (h : Blocks next b l cf cl) :
    b + 2 ≤ cf ∧ cf < b + 16 ∧ lastBlock b l + 2 < cl ∧ cl ≤ lastBlock b l + 16 ∧
      next (lastBlock b l) = none := by
  induction l generalizing b cf with
  | nil =>
    obtain ⟨h1, h2, h3, h4⟩ := h
    exact ⟨h1, by omega, by unfold lastBlock; omega, h3, h4⟩
  | cons b' l ih =>
    obtain ⟨-, -, h3⟩ := ih h.2.2.2
    exact ⟨h.1, h.2.1, h3⟩

theorem mem_cells {x : Nat} (h : Blocks next b l cf cl) (hx : x ∈ cells b l cf cl) :
    ∃ y ∈ b :: l, y ≤ x ∧ x < y + 16 := by
  induction l generalizing b cf with
  | nil =>
    obtain ⟨h1, h2, h3, -⟩ := h
    rw [cells, List.mem_range'_1] at hx
    exact ⟨b, by simp, by omega, by omega⟩
  | cons b' l ih =>
    rw [cells, List.mem_append] at hx
    rcases hx with hx | hx
    · rw [List.mem_range'_1] at hx
      have := h.1
      exact ⟨b, by simp, by omega, by omega⟩
    · obtain ⟨y, hy, hyx⟩ := ih h.2.2.2 hx
      exact ⟨y, List.mem_cons_of_mem b hy, hyx⟩

/-- The characters in one piece at the front. -/
def piece (b : Nat) (l : List Nat) (cf cl : Nat) : Nat :=
  match l with
  | [] => cl - cf
  | _ :: _ => b + 16 - cf

theorem range'_split {s m n : Nat} (h : m ≤ n) :
    List.range' s n = List.range' s m ++ List.range' (s + m) (n - m) := by
  rw [List.range'_append_1, Nat.add_sub_cancel' h]

/-- `k` characters are taken off the front piece: all of the queue, a part of the block, or all of
    the block. -/
theorem cells_drop (h : Blocks next b l cf cl) {k : Nat} (hk : k ≤ piece b l cf cl) :
    (l = [] ∧ cf + k = cl ∧ cells b l cf cl = List.range' cf k) ∨
    (cf + k < b + 16 ∧ Blocks next b l (cf + k) cl ∧
      cells b l cf cl = List.range' cf k ++ cells b l (cf + k) cl) ∨
    ∃ b' l', l = b' :: l' ∧ cf + k = b + 16 ∧ next b = some b' ∧
      Blocks next b' l' (b' + 2) cl ∧
      cells b l cf cl = List.range' cf k ++ cells b' l' (b' + 2) cl := by
  cases l with
  | nil =>
    obtain ⟨h1, h2, h3, h4⟩ := h
    have hk' : k ≤ cl - cf := hk
    by_cases hend : cf + k = cl
    · refine .inl ⟨rfl, hend, ?_⟩
      rw [cells, show cl - cf = k by omega]
    · refine .inr (.inl ⟨by omega, ⟨by omega, by omega, h3, h4⟩, ?_⟩)
      rw [cells, cells, range'_split hk', show cl - cf - k = cl - (cf + k) by omega]
  | cons b' l =>
    obtain ⟨h1, h2, h3, h4⟩ := h
    have hk' : k ≤ b + 16 - cf := hk
    by_cases hend : cf + k = b + 16
    · refine .inr (.inr ⟨b', l, rfl, hend, h3, h4, ?_⟩)
      rw [cells, show b + 16 - cf = k by omega]
    · refine .inr (.inl ⟨by omega, ⟨by omega, by omega, h3, h4⟩, ?_⟩)
      rw [cells, cells, range'_split hk', List.append_assoc,
        show b + 16 - cf - k = b + 16 - (cf + k) by omega]

theorem cells_pos (h : Blocks next b l cf cl) : 0 < (cells b l cf cl).length := by
  cases l with
  | nil =>
    have := h.2.1
    rw [cells, List.length_range']
    omega
  | cons b' l =>
    have := h.2.1
    rw [cells, List.length_append, List.length_range']
    omega

theorem piece_pos (h : Blocks next b l cf cl) : 0 < piece b l cf cl := by
  cases l with
  | nil =>
    have h1 := h.2.1
    change 0 < cl - cf
    omega
  | cons b' l =>
    have h1 := h.2.1
    change 0 < b + 16 - cf
    omega

/-- One more character in the last block. -/
theorem blocks_snoc (h : Blocks next b l cf cl) (hroom : cl < lastBlock b l + 16) :
    Blocks next b l cf (cl + 1) ∧ cells b l cf (cl + 1) = cells b l cf cl ++ [cl] := by
  induction l generalizing b cf with
  | nil =>
    obtain ⟨h1, h2, h3, h4⟩ := h
    have hroom' : cl < b + 16 := hroom
    refine ⟨⟨h1, by omega, by omega, h4⟩, ?_⟩
    rw [cells, cells, show cl + 1 - cf = cl - cf + 1 by omega, List.range'_1_concat,
      show cf + (cl - cf) = cl by omega]
  | cons b' l ih =>
    obtain ⟨h1, h2⟩ := ih h.2.2.2 hroom
    refine ⟨⟨h.1, h.2.1, h.2.2.1, h1⟩, ?_⟩
    rw [cells, cells, h2, List.append_assoc]

theorem notMem_cells (h : Blocks next b l cf cl) (hroom : cl < lastBlock b l + 16)
    (hal : ∀ y ∈ b :: l, y % 16 = 0) : cl ∉ cells b l cf cl := by
  have hnd := h.chain.nodup
  induction l generalizing b cf with
  | nil =>
    rw [cells, List.mem_range'_1]
    omega
  | cons b' l ih =>
    have hrest := h.2.2.2
    rw [cells, List.mem_append, List.mem_range'_1]
    rintro (hx | hx)
    · -- `b` would be the last block
      have hlast := hrest.bounds
      have hmem := lastBlock_mem b' l
      have h1 := hal b (by simp)
      have h2 := hal _ (List.mem_cons_of_mem b hmem)
      have hb := h.1
      have hroom' : cl < lastBlock b' l + 16 := hroom
      have heq : b = lastBlock b' l := by omega
      exact (List.nodup_cons.mp hnd).1 (heq ▸ hmem)
    · exact ih hrest hroom (fun y hy => hal y (List.mem_cons_of_mem b hy))
        (List.nodup_cons.mp hnd).2 hx

/-- A new block is linked in, with one character. -/
theorem blocks_link {nb : Nat} (h : Blocks next b l cf cl) (hcl : cl = lastBlock b l + 16)
    (hnb : nb ∉ b :: l) :
    Blocks (Function.update (Function.update next (lastBlock b l) (some nb)) nb none) b (l ++ [nb])
        cf (nb + 3) ∧
      cells b (l ++ [nb]) cf (nb + 3) = cells b l cf cl ++ [nb + 2] := by
  have hnd := h.chain.nodup
  induction l generalizing b cf with
  | nil =>
    obtain ⟨h1, h2, h3, h4⟩ := h
    have hb : nb ≠ b := by
      rintro rfl
      exact hnb (by simp)
    have hcl' : cl = b + 16 := hcl
    refine ⟨⟨h1, by omega, ?_, ⟨by omega, by omega, by omega, Function.update_self _ _ _⟩⟩, ?_⟩
    · rw [Function.update_of_ne hb.symm, lastBlock, Function.update_self]
    · rw [List.nil_append, cells, cells, cells, hcl', show nb + 3 - (nb + 2) = 1 by omega]
      rfl
  | cons b' l ih =>
    obtain ⟨hb, hnd'⟩ := List.nodup_cons.mp hnd
    obtain ⟨h1, h2⟩ := ih h.2.2.2 hcl (fun hx => hnb (List.mem_cons_of_mem b hx)) hnd'
    have hbl : b ≠ lastBlock b' l := by
      intro he
      exact hb (he ▸ lastBlock_mem b' l)
    have hbn : b ≠ nb := by
      rintro rfl
      exact hnb (by simp)
    refine ⟨⟨h.1, h.2.1, ?_, h1⟩, ?_⟩
    · rw [Function.update_of_ne hbn, lastBlock, Function.update_of_ne hbl]
      exact h.2.2.1
    · rw [List.cons_append, cells, cells, h2, List.append_assoc]

end Venix.Kernel
