/-
  `gmtime` and `asctime` of the C library (`gen/ctime.c`).

  `int?` and `long?` check that a value fits a 16-bit `int` or a 32-bit `long`; where one does
  not, and where an index is outside of its array, the result is `none`. `/` and `%` are
  `Int.tdiv` and `Int.tmod`. `dmsize` and `cbuf` are the static arrays.
-/
import Venix.Lib.Loop

namespace Venix.Libc

open Venix.Lib

def int? (n : Int) : Option Int := if -32768 ≤ n ∧ n < 32768 then some n else none

def long? (n : Int) : Option Int := if -2147483648 ≤ n ∧ n < 2147483648 then some n else none

/-- `struct tm` -/
structure Tm where
  sec : Int
  min : Int
  hour : Int
  mday : Int
  mon : Int
  year : Int
  wday : Int
  yday : Int
  isdst : Int
  deriving DecidableEq, Repr

/-! ## `gmtime` -/

/-- The table of the months, as it is between the calls. -/
def dmsize : List Int := [31, 28, 31, 30, 31, 30, 31, 31, 30, 31, 30, 31]

/-- The days of a year. -/
def dysize (y : Int) : Int := if y.tmod 4 = 0 then 366 else 365

/-- More turns than any of the loops makes. -/
def maxLoops : Nat := 65536

/-- A turn of the loop up the years, from `d1` and `day`. -/
def upTurn (s : Int × Int) : Option (Int × Int) := do
  let day ← long? (s.2 - dysize s.1)
  let d1 ← int? (s.1 + 1)
  some (d1, day)

/-- `for (d1=70; day >= dysize(d1); d1++) day -= dysize(d1);` -/
def yearsUp (s : Int × Int) : Option (Int × Int) :=
  whileLoop (fun s => s.2 ≥ dysize s.1) upTurn maxLoops s

/-- A turn of the loop down the years. -/
def downTurn (s : Int × Int) : Option (Int × Int) := do
  let y ← int? (s.1 - 1)
  let day ← long? (s.2 + dysize y)
  let d1 ← int? (s.1 - 1)
  some (d1, day)

/-- `for (d1=70; day<0; d1--) day += dysize(d1-1);` -/
def yearsDown (s : Int × Int) : Option (Int × Int) :=
  whileLoop (fun s => s.2 < 0) downTurn maxLoops s

/-- The year of a day, and the day of the year. -/
def years (day : Int) : Option (Int × Int) :=
  if day ≥ 0 then yearsUp (70, day) else yearsDown (70, day)

/-- An array at an index. -/
def at? {α : Type} (l : List α) (i : Int) : Option α := if 0 ≤ i then l[i.toNat]? else none

/-- A turn of the loop over the months, from `d1` and `d0`. -/
def monthTurn (dmsize : List Int) (s : Int × Int) : Option (Turn (Int × Int) (Int × Int)) := do
  let size ← at? dmsize s.1
  if s.2 ≥ size then
    let d0 ← int? (s.2 - size)
    let d1 ← int? (s.1 + 1)
    some (.more (d1, d0))
  else some (.done s)

/-- `for(d1=0; d0 >= dmsize[d1]; d1++) d0 -= dmsize[d1];` -/
def months (dmsize : List Int) (s : Int × Int) : Option (Int × Int) :=
  loop (monthTurn dmsize) maxLoops s

/-- The first lines of `gmtime`: the second of the day, and the day. -/
def splitDay (tim : Int) : Option (Int × Int) := do
  let hms ← long? (tim.tmod 86400)
  let day ← long? (tim.tdiv 86400)
  if hms < 0 then
    let hms ← long? (hms + 86400)
    let day ← long? (day - 1)
    some (hms, day)
  else some (hms, day)

/-- `gmtime`: the result, and the table after the call. -/
def gmtime (dmsize : List Int) (tim : Int) : Option (Tm × List Int) := do
  let (hms, day) ← splitDay tim
  let sec ← int? (hms.tmod 60)
  let d1 ← int? (hms.tdiv 60)
  let min ← int? (d1.tmod 60)
  let hour ← int? (d1.tdiv 60)
  let shifted ← long? (day + 7340036)
  let wday ← int? (shifted.tmod 7)
  let (year, day) ← years day
  let yday ← int? day
  let dmsize := if dysize year = 366 then dmsize.set 1 29 else dmsize
  let (mon, d0) ← months dmsize (0, yday)
  let dmsize := dmsize.set 1 28
  let mday ← int? (d0 + 1)
  some (⟨sec, min, hour, mday, mon, year, wday, yday, 0⟩, dmsize)

/-! ## `asctime` -/

/-- `*cp = c` in `cbuf`. -/
def put (cbuf : List Char) (cp : Nat) (c : Char) : Option (List Char) :=
  if cp < cbuf.length then some (cbuf.set cp c) else none

/-- The end of a string. -/
def nul : Char := Char.ofNat 0

/-- `while (*cp++ = *ncp++);` -/
def copyString : List Char → List Char → Nat → Option (List Char)
  | [], cbuf, cp => put cbuf cp nul
  | c :: ncp, cbuf, cp => do
    let cbuf ← put cbuf cp c
    copyString ncp cbuf (cp + 1)

/-- `*cp++ = *ncp++;` three times. -/
def putName (ncp : List Char) (i : Int) (cbuf : List Char) (cp : Nat) : Option (List Char) := do
  let c ← at? ncp i
  let cbuf ← put cbuf cp c
  let c ← at? ncp (i + 1)
  let cbuf ← put cbuf (cp + 1) c
  let c ← at? ncp (i + 2)
  put cbuf (cp + 2) c

/-- `n + '0'` for a digit. -/
def digit (n : Int) : Char := Char.ofNat (n + 48).toNat

/-- Two digits, or a blank and a digit, from the second character on. -/
def ct_numb (cbuf : List Char) (cp : Nat) (n : Int) : Option (List Char × Nat) := do
  let cp := cp + 1
  let cbuf ← if n ≥ 10 then put cbuf cp (digit ((n.tdiv 10).tmod 10)) else put cbuf cp ' '
  let cp := cp + 1
  let cbuf ← put cbuf cp (digit (n.tmod 10))
  some (cbuf, cp + 1)

def dayNames : List Char := "SunMonTueWedThuFriSat".toList

def monthNames : List Char := "JanFebMarAprMayJunJulAugSepOctNovDec".toList

def template : List Char := "Day Mon 00 00:00:00 1900\n".toList

/-- `asctime`: what is in `cbuf` after it. -/
def asctime (cbuf : List Char) (t : Tm) : Option (List Char) := do
  let cbuf ← copyString template cbuf 0
  let i ← int? (3 * t.wday)
  let cbuf ← putName dayNames i cbuf 0
  let i ← int? (t.mon * 3)
  let cbuf ← putName monthNames i cbuf 4
  let (cbuf, cp) ← ct_numb cbuf 7 t.mday
  let n ← int? (t.hour + 100)
  let (cbuf, cp) ← ct_numb cbuf cp n
  let n ← int? (t.min + 100)
  let (cbuf, cp) ← ct_numb cbuf cp n
  let n ← int? (t.sec + 100)
  let (cbuf, cp) ← ct_numb cbuf cp n
  let cbuf ←
    if t.year ≥ 100 then do
      let cbuf ← put cbuf (cp + 1) '2'
      put cbuf (cp + 2) '0'
    else some cbuf
  let cp := cp + 2
  let n ← int? (t.year + 100)
  let (cbuf, _) ← ct_numb cbuf cp n
  some cbuf

end Venix.Libc
