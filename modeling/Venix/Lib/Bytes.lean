/-
  Fixed-size arrays, and the 16-bit and 32-bit integers stored in byte buffers.

  `Arr α n` is an array of `n` elements and `Bytes n` a buffer of `n` bytes. Elements are read
  and written by number. `getWord`/`putWord` store a 16-bit integer low
  byte first. `getLong`/`putLong` store a 32-bit integer as two such words, high word first
  (the order of a `long` on the PDP-11). Reading back what was stored, and reading next to
  what was stored, are the only facts the rest of the development uses.
-/
import Mathlib.Tactic

namespace Venix.Lib

/-- An array of `n` elements of type `α`, as a C array of fixed size. -/
abbrev Arr (α : Type) (n : Nat) := Fin n → α

namespace Arr

variable {α : Type} [Inhabited α] {n : Nat}

/-- Element `i`; a number outside the array reads as the default element. -/
def get (b : Arr α n) (i : Nat) : α := if h : i < n then b ⟨i, h⟩ else default

/-- The array with element `i` replaced; a number outside the array changes nothing. -/
def put (b : Arr α n) (i : Nat) (v : α) : Arr α n :=
  fun k => if k.val = i then v else b k

theorem get_put (b : Arr α n) (i k : Nat) (v : α) (hi : i < n) :
    (b.put i v).get k = if k = i then v else b.get k := by
  unfold get put
  by_cases hk : k < n
  · simp [hk]
  · have : k ≠ i := by omega
    simp [hk, this]

theorem get_put_self (b : Arr α n) (i : Nat) (v : α) (hi : i < n) :
    (b.put i v).get i = v := by
  rw [get_put b i i v hi, if_pos rfl]

theorem get_put_ne (b : Arr α n) {i k : Nat} (v : α) (h : k ≠ i) :
    (b.put i v).get k = b.get k := by
  unfold get put
  simp only [h, if_false]

theorem get_const (c : α) {i : Nat} (hi : i < n) : get (fun _ : Fin n => c) i = c := by
  unfold get
  rw [dif_pos hi]

end Arr

abbrev Byte := BitVec 8

/-- A buffer of `n` bytes. -/
abbrev Bytes (n : Nat) := Arr Byte n

namespace Bytes

open Arr

variable {n : Nat}

def zero : Bytes n := fun _ => 0

@[simp] theorem get_zero (i : Nat) : (zero : Bytes n).get i = 0 := by
  unfold Arr.get zero
  split <;> rfl

/-! ## Words and longs -/

def getWord (b : Bytes n) (o : Nat) : BitVec 16 := b.get (o + 1) ++ b.get o

def putWord (b : Bytes n) (o : Nat) (w : BitVec 16) : Bytes n :=
  (b.put o (w.extractLsb' 0 8)).put (o + 1) (w.extractLsb' 8 8)

def getLong (b : Bytes n) (o : Nat) : BitVec 32 := b.getWord o ++ b.getWord (o + 2)

def putLong (b : Bytes n) (o : Nat) (l : BitVec 32) : Bytes n :=
  (b.putWord o (l.extractLsb' 16 16)).putWord (o + 2) (l.extractLsb' 0 16)

@[simp] theorem getWord_zero (o : Nat) : (zero : Bytes n).getWord o = 0 := by
  simp [getWord]

@[simp] theorem getLong_zero (o : Nat) : (zero : Bytes n).getLong o = 0 := by
  simp [getLong]

theorem get_putWord_ne (b : Bytes n) {o k : Nat} (w : BitVec 16) (h : k < o ∨ o + 2 ≤ k) :
    (b.putWord o w).get k = b.get k := by
  unfold putWord
  rw [get_put_ne _ _ (by omega), get_put_ne _ _ (by omega)]

theorem get_putLong_ne (b : Bytes n) {o k : Nat} (l : BitVec 32) (h : k < o ∨ o + 4 ≤ k) :
    (b.putLong o l).get k = b.get k := by
  unfold putLong
  rw [get_putWord_ne _ _ (by omega), get_putWord_ne _ _ (by omega)]

theorem getWord_putWord_self (b : Bytes n) (o : Nat) (w : BitVec 16) (h : o + 1 < n) :
    (b.putWord o w).getWord o = w := by
  unfold getWord putWord
  rw [get_put_self _ _ _ h, get_put_ne _ _ (by omega), get_put_self _ _ _ (by omega)]
  rw [BitVec.extractLsb'_append_extractLsb'_eq_extractLsb' (by rfl)]
  exact BitVec.extractLsb'_eq_self

theorem getWord_putWord_ne (b : Bytes n) {o k : Nat} (w : BitVec 16)
    (h : k + 2 ≤ o ∨ o + 2 ≤ k) : (b.putWord o w).getWord k = b.getWord k := by
  unfold getWord
  rw [get_putWord_ne _ _ (by omega), get_putWord_ne _ _ (by omega)]

theorem getWord_putLong_ne (b : Bytes n) {o k : Nat} (l : BitVec 32)
    (h : k + 2 ≤ o ∨ o + 4 ≤ k) : (b.putLong o l).getWord k = b.getWord k := by
  unfold getWord
  rw [get_putLong_ne _ _ (by omega), get_putLong_ne _ _ (by omega)]

theorem getLong_putLong_self (b : Bytes n) (o : Nat) (l : BitVec 32) (h : o + 3 < n) :
    (b.putLong o l).getLong o = l := by
  unfold getLong putLong
  rw [getWord_putWord_self _ _ _ (by omega), getWord_putWord_ne _ _ (by omega),
    getWord_putWord_self _ _ _ (by omega)]
  rw [BitVec.extractLsb'_append_extractLsb'_eq_extractLsb' (by rfl)]
  exact BitVec.extractLsb'_eq_self

theorem getLong_putLong_ne (b : Bytes n) {o k : Nat} (l : BitVec 32)
    (h : k + 4 ≤ o ∨ o + 4 ≤ k) : (b.putLong o l).getLong k = b.getLong k := by
  unfold getLong
  rw [getWord_putLong_ne _ _ (by omega), getWord_putLong_ne _ _ (by omega)]

end Bytes

end Venix.Lib
