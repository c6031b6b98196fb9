/-
  The block cipher of the C library (`gen/crypt.c`): `setkey`, `encrypt`, and the lines of `crypt`
  that permute `E` by the salt.

  A block and a key are 64 characters, one for each bit. The result is `none` where an index is
  outside of its array. `L` and `R` are one array of 64, as `encrypt` takes them; what is in the
  other static arrays before a call is not read.
-/
import Mathlib.Tactic

namespace Venix.Libc.Crypt

/-! ## Tables -/

/-- Initial permutation. -/
def IP : List Nat :=
  [58, 50, 42, 34, 26, 18, 10, 2,
   60, 52, 44, 36, 28, 20, 12, 4,
   62, 54, 46, 38, 30, 22, 14, 6,
   64, 56, 48, 40, 32, 24, 16, 8,
   57, 49, 41, 33, 25, 17, 9, 1,
   59, 51, 43, 35, 27, 19, 11, 3,
   61, 53, 45, 37, 29, 21, 13, 5,
   63, 55, 47, 39, 31, 23, 15, 7]

/-- Final permutation. -/
def FP : List Nat :=
  [40, 8, 48, 16, 56, 24, 64, 32,
   39, 7, 47, 15, 55, 23, 63, 31,
   38, 6, 46, 14, 54, 22, 62, 30,
   37, 5, 45, 13, 53, 21, 61, 29,
   36, 4, 44, 12, 52, 20, 60, 28,
   35, 3, 43, 11, 51, 19, 59, 27,
   34, 2, 42, 10, 50, 18, 58, 26,
   33, 1, 41, 9, 49, 17, 57, 25]

def PC1_C : List Nat :=
  [57, 49, 41, 33, 25, 17, 9, 1, 58, 50, 42, 34, 26, 18,
   10, 2, 59, 51, 43, 35, 27, 19, 11, 3, 60, 52, 44, 36]

def PC1_D : List Nat :=
  [63, 55, 47, 39, 31, 23, 15, 7, 62, 54, 46, 38, 30, 22,
   14, 6, 61, 53, 45, 37, 29, 21, 13, 5, 28, 20, 12, 4]

def shifts : List Nat :=
  [1, 1, 2, 2, 2, 2, 2, 2, 1, 2, 2, 2, 2, 2, 2, 1]

def PC2_C : List Nat :=
  [14, 17, 11, 24, 1, 5, 3, 28, 15, 6, 21, 10,
   23, 19, 12, 4, 26, 8, 16, 7, 27, 20, 13, 2]

def PC2_D : List Nat :=
  [41, 52, 31, 37, 47, 55, 30, 40, 51, 45, 33, 48,
   44, 49, 39, 56, 34, 53, 46, 42, 50, 36, 29, 32]

/-- The table that `E` is a copy of. -/
def e : List Nat :=
  [32, 1, 2, 3, 4, 5, 4, 5, 6, 7, 8, 9,
   8, 9, 10, 11, 12, 13, 12, 13, 14, 15, 16, 17,
   16, 17, 18, 19, 20, 21, 20, 21, 22, 23, 24, 25,
   24, 25, 26, 27, 28, 29, 28, 29, 30, 31, 32, 1]

/-- The selection functions. -/
def S : List (List Nat) :=
  [[14, 4, 13, 1, 2, 15, 11, 8, 3, 10, 6, 12, 5, 9, 0, 7,
    0, 15, 7, 4, 14, 2, 13, 1, 10, 6, 12, 11, 9, 5, 3, 8,
    4, 1, 14, 8, 13, 6, 2, 11, 15, 12, 9, 7, 3, 10, 5, 0,
    15, 12, 8, 2, 4, 9, 1, 7, 5, 11, 3, 14, 10, 0, 6, 13],
   [15, 1, 8, 14, 6, 11, 3, 4, 9, 7, 2, 13, 12, 0, 5, 10,
    3, 13, 4, 7, 15, 2, 8, 14, 12, 0, 1, 10, 6, 9, 11, 5,
    0, 14, 7, 11, 10, 4, 13, 1, 5, 8, 12, 6, 9, 3, 2, 15,
    13, 8, 10, 1, 3, 15, 4, 2, 11, 6, 7, 12, 0, 5, 14, 9],
   [10, 0, 9, 14, 6, 3, 15, 5, 1, 13, 12, 7, 11, 4, 2, 8,
    13, 7, 0, 9, 3, 4, 6, 10, 2, 8, 5, 14, 12, 11, 15, 1,
    13, 6, 4, 9, 8, 15, 3, 0, 11, 1, 2, 12, 5, 10, 14, 7,
    1, 10, 13, 0, 6, 9, 8, 7, 4, 15, 14, 3, 11, 5, 2, 12],
   [7, 13, 14, 3, 0, 6, 9, 10, 1, 2, 8, 5, 11, 12, 4, 15,
    13, 8, 11, 5, 6, 15, 0, 3, 4, 7, 2, 12, 1, 10, 14, 9,
    10, 6, 9, 0, 12, 11, 7, 13, 15, 1, 3, 14, 5, 2, 8, 4,
    3, 15, 0, 6, 10, 1, 13, 8, 9, 4, 5, 11, 12, 7, 2, 14],
   [2, 12, 4, 1, 7, 10, 11, 6, 8, 5, 3, 15, 13, 0, 14, 9,
    14, 11, 2, 12, 4, 7, 13, 1, 5, 0, 15, 10, 3, 9, 8, 6,
    4, 2, 1, 11, 10, 13, 7, 8, 15, 9, 12, 5, 6, 3, 0, 14,
    11, 8, 12, 7, 1, 14, 2, 13, 6, 15, 0, 9, 10, 4, 5, 3],
   [12, 1, 10, 15, 9, 2, 6, 8, 0, 13, 3, 4, 14, 7, 5, 11,
    10, 15, 4, 2, 7, 12, 9, 5, 6, 1, 13, 14, 0, 11, 3, 8,
    9, 14, 15, 5, 2, 8, 12, 3, 7, 0, 4, 10, 1, 13, 11, 6,
    4, 3, 2, 12, 9, 5, 15, 10, 11, 14, 1, 7, 6, 0, 8, 13],
   [4, 11, 2, 14, 15, 0, 8, 13, 3, 12, 9, 7, 5, 10, 6, 1,
    13, 0, 11, 7, 4, 9, 1, 10, 14, 3, 5, 12, 2, 15, 8, 6,
    1, 4, 11, 13, 12, 3, 7, 14, 10, 15, 6, 8, 0, 5, 9, 2,
    6, 11, 13, 8, 1, 4, 10, 7, 9, 5, 0, 15, 14, 2, 3, 12],
   [13, 2, 8, 4, 6, 15, 11, 1, 10, 9, 3, 14, 5, 0, 12, 7,
    1, 15, 13, 8, 10, 3, 7, 4, 12, 5, 6, 11, 0, 14, 9, 2,
    7, 11, 4, 1, 9, 12, 14, 2, 0, 6, 10, 13, 15, 3, 5, 8,
    2, 1, 14, 7, 4, 10, 8, 13, 15, 12, 9, 0, 3, 5, 6, 11]]

def P : List Nat :=
  [16, 7, 20, 21, 29, 12, 28, 17,
   1, 15, 23, 26, 5, 18, 31, 10,
   2, 8, 24, 14, 32, 27, 3, 9,
   19, 13, 30, 6, 22, 11, 4, 25]

/-! ## Arrays -/

/-- `a[p-1]`. -/
def pick (a : List Nat) (p : Nat) : Option Nat := if p = 0 then none else a[p - 1]?

/-- `for (j=0; j<n; j++) a[j] = f(j)`, where `f` does not read `a`. -/
def fill (n : Nat) (f : Nat → Option Nat) : Option (List Nat) := (List.range n).mapM f

/-! ## `setkey` -/

/-- The first element goes to the end, and the others one down, in place. -/
def rotate (C : List Nat) : Option (List Nat) := do
  let t ← C[0]?
  let C ← (List.range 27).foldlM (fun C j => do
    let c ← C[j + 1]?
    some (C.set j c)) C
  some (C.set 27 t)

/-- One key of the schedule, after the rotations, and `C` and `D` after it. -/
def schedule (CD : List Nat × List Nat) (shift : Nat) :
    Option (List Nat × List Nat × List Nat) := do
  let (C, D) ← (List.range shift).foldlM (fun (CD : List Nat × List Nat) _ => do
    let C ← rotate CD.1
    let D ← rotate CD.2
    some (C, D)) CD
  let left ← fill 24 fun j => do pick C (← PC2_C[j]?)
  let right ← fill 24 fun j => do
    let p ← PC2_D[j]?
    if p < 28 then none else pick D (p - 28)
  some (left ++ right, C, D)

/-- The keys, one after the other. -/
def scheduleAll : List Nat → List Nat × List Nat → Option (List (List Nat))
  | [], _ => some []
  | shift :: rest, CD => do
    let (k, CD) ← schedule CD shift
    let ks ← scheduleAll rest CD
    some (k :: ks)

/-- `setkey`: what is in `KS` after it. -/
def setkey (key : List Nat) : Option (List (List Nat)) := do
  let C ← fill 28 fun i => do pick key (← PC1_C[i]?)
  let D ← fill 28 fun i => do pick key (← PC1_D[i]?)
  scheduleAll shifts (C, D)

/-! ## `encrypt` -/

/-- The selection function `j` of its six bits. -/
def select (preS : List Nat) (j : Nat) : Option (List Nat) := do
  let t := 6 * j
  let b0 ← preS[t]?
  let b1 ← preS[t + 1]?
  let b2 ← preS[t + 2]?
  let b3 ← preS[t + 3]?
  let b4 ← preS[t + 4]?
  let b5 ← preS[t + 5]?
  let row ← S[j]?
  let k ← row[(b0 <<< 5) + (b1 <<< 3) + (b2 <<< 2) + (b3 <<< 1) + (b4 <<< 0) + (b5 <<< 4)]?
  some [(k >>> 3) &&& 1, (k >>> 2) &&& 1, (k >>> 1) &&& 1, (k >>> 0) &&& 1]

/-- One of the sixteen operations on `L` and `R`. -/
def turn (E Ki L : List Nat) : Option (List Nat) := do
  let R := L.drop 32
  let tempL ← fill 32 fun j => R[j]?
  let preS ← fill 48 fun j => do
    let r ← pick R (← E[j]?)
    let k ← Ki[j]?
    some (r ^^^ k)
  let f ← (List.range 8).mapM (select preS)
  let R ← fill 32 fun j => do
    let l ← L[j]?
    let x ← pick f.flatten (← P[j]?)
    some (l ^^^ x)
  some (tempL ++ R)

/-- The key of turn `ii`. -/
def keyIndex (edflag : Int) (ii : Nat) : Nat := if edflag ≠ 0 then 15 - ii else ii

/-- `encrypt`: what is in `block` after it. -/
def encrypt (E : List Nat) (KS : List (List Nat)) (block : List Nat) (edflag : Int) :
    Option (List Nat) := do
  let L ← fill 64 fun j => do pick block (← IP[j]?)
  let L ← (List.range 16).foldlM (fun L ii => do
    let Ki ← KS[keyIndex edflag ii]?
    turn E Ki L) L
  -- the halves are exchanged
  let L := L.drop 32 ++ L.take 32
  fill 64 fun j => do pick L (← FP[j]?)

/-! ## The salt -/

/-- A character of the salt, as a number of which six bits are used. -/
def saltBits (c : Int) : Int :=
  let c := if c > 'Z'.toNat then c - 6 else c
  let c := if c > '9'.toNat then c - 7 else c
  c - '.'.toNat

/-- `E[p]` and `E[p+24]` are exchanged. -/
def exchange (E : List Nat) (p : Nat) : Option (List Nat) := do
  let temp ← E[p]?
  let x ← E[p + 24]?
  some ((E.set p x).set (p + 24) temp)

/-- The table `E` that `crypt` makes for the two characters of the salt. -/
def saltTable (c0 c1 : Int) : Option (List Nat) :=
  ([(0, c0), (1, c1)] : List (Nat × Int)).foldlM (fun E ic =>
    (List.range 6).foldlM (fun E j =>
      if (saltBits ic.2 / 2 ^ j) % 2 = 1 then exchange E (6 * ic.1 + j) else some E) E) e

end Venix.Libc.Crypt
