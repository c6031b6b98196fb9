/-
  What a program matches. Its items read a line one behind the other; an item can read it in several ways,
  of which the longest comes first. A starred back reference to an empty string has no longest way.
-/
import Venix.Lib.Fuel
import Venix.Grep.CompileRun
import Venix.Grep.Advance

namespace Venix.Grep

open Venix.Lib Function

/-- The byte at place `i` of a line; behind the line it is 0. -/
abbrev byteAt (line : List Byte) (i : Nat) : Byte := line.getD i 0

/-- Whether an atom that is no back reference accepts a character. -/
def Atom.accepts : Atom → Byte → Bool
  | chr c, d => decide (d = c)
  | dot, d => decide (d ≠ 0)
  | ccl map, d => has map (d &&& 0o177).toNat
  | back _, _ => false

/-- Nothing is captured. -/
def Bra.none : Bra := ⟨fun _ => .none, fun _ => .none⟩

/-- The beginning and the length of what a bracket has captured. -/
def Bra.string (bra : Bra) (k : Nat) : Option (Nat × Nat) :=
  match bra.braslist k, bra.braelist k with
  | some b, some e => some (b, e - b)
  | _, _ => .none

/-- The `ct` bytes from `b` on are those from `lp` on. -/
def same (line : List Byte) (b ct lp : Nat) : Bool :=
  decide ((line.drop b).take ct = (line.drop lp).take ct)

/-- How many times `test` can hold one behind the other, the most first. -/
def repeats (line : List Byte) (test : Nat → Bool) : List Nat :=
  ((List.range (line.length + 1)).filter fun m => (List.range m).all test).reverse

/-- The ways of an item: where it ends, and the brackets behind it. -/
def choices (line : List Byte) : Item → Nat → Bra → List (Nat × Bra)
  | .one (.back k) star, lp, bra =>
    match bra.string k with
    | .none => []
    | some (b, ct) =>
      if star then (repeats line fun j => same line b ct (lp + j * ct)).map fun m => (lp + m * ct, bra)
      else if same line b ct lp then [(lp + ct, bra)] else []
  | .one a star, lp, bra =>
    if star then (repeats line fun j => a.accepts (byteAt line (lp + j))).map fun m => (lp + m, bra)
    else if a.accepts (byteAt line lp) then [(lp + 1, bra)] else []
  | .bra k, lp, bra => [(lp, { bra with braslist := update bra.braslist k (some lp) })]
  | .ket k, lp, bra => [(lp, { bra with braelist := update bra.braelist k (some lp) })]
  | .dol, lp, bra => if lp = line.length then [(lp, bra)] else []

/-- The items read the line from `lp` on. -/
def reads (line : List Byte) : List Item → Nat → Bra → Bool
  | [], _, _ => true
  | it :: items, lp, bra => (choices line it lp bra).any fun c => reads line items c.1 c.2

/-- A starred back reference to a string that is empty. -/
def Item.endless (bra : Bra) : Item → Bool
  | one (.back k) true => (bra.string k).any fun s => s.2 == 0
  | _ => false

/-- Such a back reference is met before the items have read the line. -/
def stuck (line : List Byte) : List Item → Nat → Bra → Bool
  | [], _, _ => false
  | it :: items, lp, bra => it.endless bra ||
    meets (fun c => reads line items c.1 c.2) (fun c => stuck line items c.1 c.2) (choices line it lp bra)

/-! ## The ways of an item -/

variable {line : List Byte} {lp : Nat} {bra : Bra}

theorem choices_one {a : Atom} (hback : ∀ k, a ≠ .back k) : choices line (.one a false) lp bra =
    if a.accepts (byteAt line lp) then [(lp + 1, bra)] else [] := by
  cases a with
  | back k => exact absurd rfl (hback k)
  | chr c => rfl
  | dot => rfl
  | ccl map => rfl

theorem choices_star {a : Atom} (hback : ∀ k, a ≠ .back k) : choices line (.one a true) lp bra =
    (repeats line fun j => a.accepts (byteAt line (lp + j))).map fun m => (lp + m, bra) := by
  cases a with
  | back k => exact absurd rfl (hback k)
  | chr c => rfl
  | dot => rfl
  | ccl map => rfl

theorem endless_one {a : Atom} (hback : ∀ k, a ≠ .back k) (star : Bool) :
    (Item.one a star).endless bra = false := by
  cases a with
  | back k => exact absurd rfl (hback k)
  | chr c => rfl
  | dot => rfl
  | ccl map => rfl

theorem endless_back_none {k : Nat} (h : bra.string k = .none) (star : Bool) :
    (Item.one (.back k) star).endless bra = false := by
  cases star with
  | false => rfl
  | true =>
    unfold Item.endless
    dsimp only
    rw [h]
    rfl

theorem endless_backs {k b ct : Nat} (h : bra.string k = some (b, ct)) :
    (Item.one (.back k) true).endless bra = (ct == 0) := by
  unfold Item.endless
  dsimp only
  rw [h]
  rfl

theorem choices_back_none {k : Nat} (h : bra.string k = .none) (star : Bool) :
    choices line (.one (.back k) star) lp bra = [] := by
  conv_lhs => unfold choices
  dsimp only
  rw [h]

theorem choices_back {k b ct : Nat} (h : bra.string k = some (b, ct)) :
    choices line (.one (.back k) false) lp bra = if same line b ct lp then [(lp + ct, bra)] else [] := by
  conv_lhs => unfold choices
  dsimp only
  rw [h]
  rfl

theorem choices_backs {k b ct : Nat} (h : bra.string k = some (b, ct)) :
    choices line (.one (.back k) true) lp bra =
      (repeats line fun j => same line b ct (lp + j * ct)).map fun m => (lp + m * ct, bra) := by
  conv_lhs => unfold choices
  dsimp only
  rw [h]
  rfl

/-! ## Repetitions -/

variable {test : Nat → Bool} {m : Nat}

theorem repeats_eq (hm : m ≤ line.length) (hall : ∀ j < m, test j = true) (hstop : test m = false) :
    repeats line test = (List.range (m + 1)).reverse := by
  have hsplit : List.range (line.length + 1) =
      List.range (m + 1) ++ (List.range (line.length - m)).map (m + 1 + ·) := by
    rw [← List.range_add]
    congr 1
    omega
  unfold repeats
  rw [hsplit, List.filter_append, List.filter_eq_self.mpr, List.filter_eq_nil_iff.mpr, List.append_nil]
  · intro i hi hrange
    obtain ⟨j, -, rfl⟩ := List.mem_map.mp hi
    have := List.all_eq_true.mp hrange m (List.mem_range.mpr (by omega))
    rw [hstop] at this
    cases this
  · intro i hi
    refine List.all_eq_true.mpr fun j hj => hall j ?_
    have := List.mem_range.mp hi
    have := List.mem_range.mp hj
    omega

theorem Atom.Proper.accepts_zero {a : Atom} (h : a.Proper) : a.accepts 0 = false := by
  cases a with
  | chr c => exact decide_eq_false (Ne.symm h)
  | dot => rfl
  | ccl map => exact h.2
  | back k => rfl

end Venix.Grep
