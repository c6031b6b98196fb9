/-
  `comm` (`comm.c`): lines of two sorted files, in three columns.

  A `char` has a sign. A line that was read is what its buffer holds up to the first NUL. The
  functions give what is printed from the call on; `none` is a run that does not come to its end
  for want of fuel. `copy` does not return.
-/
import Mathlib.Data.List.TakeWhile
import Venix.Lib.Merged

namespace Venix.Comm

def LB : Nat := 256

/-- A string in a buffer, without the NUL at its end. -/
structure Str where
  chars : List UInt8
  noNul : 0 ∉ chars

/-! ## Options -/

/-- The flags, the leaders of the columns 2 and 3, and `l` of the loop over the option. -/
structure Opts where
  one : Bool := false
  two : Bool := false
  three : Bool := false
  ldr1 : List UInt8 := [9]
  ldr2 : List UInt8 := [9, 9]
  l : Int := 1

/-- A character of the option. -/
def Opts.option (o : Opts) (c : UInt8) : Option Opts :=
  if c = 49 then
    if o.one then some o
    else some { o with one := true, ldr1 := [], ldr2 := o.ldr2.take o.l.toNat, l := o.l - 1 }
  else if c = 50 then
    if o.two then some o
    else some { o with two := true, ldr2 := o.ldr2.take o.l.toNat, l := o.l - 1 }
  else if c = 51 then some { o with three := true }
  else none

/-- The option of the command, if there is one. -/
def options (cs : List UInt8) : Option Opts := cs.foldlM Opts.option {}

/-- `ldr[n-1]`. -/
def Opts.leader (o : Opts) (n : Nat) : List UInt8 :=
  if n = 1 then [] else if n = 2 then o.ldr1 else o.ldr2

/-- The lines of column `n` are not printed. -/
def Opts.skips (o : Opts) (n : Nat) : Bool :=
  if n = 1 then o.one else if n = 2 then o.two else if n = 3 then o.three else false

/-! ## Lines -/

/-- The loop of `rd`, with the characters that are in the buffer. -/
def rdLoop : Nat → List UInt8 → List UInt8 → Option (Str × List UInt8)
  | _, _, [] => none
  | i, buf, c :: file =>
    if c = 10 ∨ i > LB - 2 then
      some (⟨buf.takeWhile (· ≠ 0), fun h => by simpa using List.mem_takeWhile_imp h⟩, file)
    else rdLoop (i + 1) (buf ++ [c]) file

def rd (file : List UInt8) : Option (Str × List UInt8) := rdLoop 0 [] file

def wr (o : Opts) (str : Str) (n : Nat) : List UInt8 :=
  if o.skips n then [] else o.leader n ++ str.chars ++ [10]

/-- `compare`, with the NUL at the end of a string. -/
def compareChars : List UInt8 → List UInt8 → Nat
  | [], [] => 0
  | [], b :: _ => if (0 : Int8) < b.toInt8 then 1 else 2
  | a :: _, [] => if a.toInt8 < 0 then 1 else 2
  | a :: as, b :: bs =>
    if a = b then compareChars as bs else if a.toInt8 < b.toInt8 then 1 else 2

def compare (a b : Str) : Nat := compareChars a.chars b.chars

/-! ## The program -/

def copy (o : Opts) : Nat → List UInt8 → Str → Nat → Option (List UInt8)
  | 0, _, _, _ => none
  | fuel + 1, ibuf, lbuf, n => do
    let out := wr o lbuf n
    match rd ibuf with
    | none => return out
    | some (lbuf, ibuf) => return out ++ (← copy o fuel ibuf lbuf n)

def mainLoop (o : Opts) : Nat → List UInt8 → Str → List UInt8 → Str → Option (List UInt8)
  | 0, _, _, _, _ => none
  | fuel + 1, ib1, lb1, ib2, lb2 => do
    let r := compare lb1 lb2
    if r = 0 then
      let out := wr o lb1 3
      match rd ib1 with
      | none =>
        match rd ib2 with
        | none => return out
        | some (lb2, ib2) => return out ++ (← copy o fuel ib2 lb2 2)
      | some (lb1, ib1) =>
        match rd ib2 with
        | none => return out ++ (← copy o fuel ib1 lb1 1)
        | some (lb2, ib2) => return out ++ (← mainLoop o fuel ib1 lb1 ib2 lb2)
    else if r = 1 then
      let out := wr o lb1 1
      match rd ib1 with
      | none => return out ++ (← copy o fuel ib2 lb2 2)
      | some (lb1, ib1) => return out ++ (← mainLoop o fuel ib1 lb1 ib2 lb2)
    else
      let out := wr o lb2 2
      match rd ib2 with
      | none => return out ++ (← copy o fuel ib1 lb1 1)
      | some (lb2, ib2) => return out ++ (← mainLoop o fuel ib1 lb1 ib2 lb2)

/-- `main`, of two files that are open. -/
def main (o : Opts) (fuel : Nat) (ib1 ib2 : List UInt8) : Option (List UInt8) :=
  match rd ib1 with
  | none =>
    match rd ib2 with
    | none => some []
    | some (lb2, ib2) => copy o fuel ib2 lb2 2
  | some (lb1, ib1) =>
    match rd ib2 with
    | none => copy o fuel ib1 lb1 1
    | some (lb2, ib2) => mainLoop o fuel ib1 lb1 ib2 lb2

end Venix.Comm
