/-
  The pages of a database (`libdbm`, `dbm.c`).

  A page is a number of items, their offsets, and the items from the end of the page down; it is read
  as bytes (`buf`) and as words of 16 bits (`sp`). An `int` has 16 bits. An access outside of the page
  is a fault here, and so is a call of `abort`.
-/
import Venix.Lib.Bytes

namespace Venix.Dbm

open Venix.Lib

/-- The size of a page. -/
def PBLKSIZ : Int16 := 512

abbrev Page := Bytes 512

inductive Fault
  | outside
  | abort
  deriving DecidableEq

namespace Page

/-- The word `k`. -/
def word (p : Page) (k : Nat) : Int16 := Int16.ofBitVec (p.getWord (2 * k))

/-- `sp[k]`. -/
def sp (p : Page) (k : Int16) : Except Fault Int16 :=
  if 0 ≤ k.toInt ∧ k.toInt < 256 then .ok (p.word k.toInt.toNat) else .error .outside

/-- `buf[i]`. -/
def buf (p : Page) (i : Int16) : Except Fault Byte :=
  if 0 ≤ i.toInt ∧ i.toInt < 512 then .ok (p.get i.toInt.toNat) else .error .outside

/-- `buf[i] = v`. -/
def setBuf (p : Page) (i : Int16) (v : Byte) : Except Fault Page :=
  if 0 ≤ i.toInt ∧ i.toInt < 512 then .ok (p.put i.toInt.toNat v) else .error .outside

end Page

/-- A `datum` of the caller; its size is an `int`. -/
structure Datum where
  bytes : List Byte
  small : bytes.length < 32768

def Datum.dsize (d : Datum) : Int16 := Int16.ofNat d.bytes.length

/-- A `datum` in a page, with the offset for `dptr`. -/
structure Item where
  dptr : Int16
  dsize : Int16

/-- `t = PBLKSIZ; if(n > 0) t = sp[n+1-1];`: where item `n` ends. -/
def Page.endOf (p : Page) (n : Int16) : Except Fault Int16 :=
  if n > 0 then p.sp (n + 1 - 1) else .ok PBLKSIZ

def makdatum (p : Page) (n : Int16) : Except Fault (Option Item) := do
  let c ← p.sp 0
  if n < 0 ∨ n ≥ c then return none
  else
    let t ← p.endOf n
    let i ← p.sp (n + 1)
    return some ⟨i, t - i⟩

/-- `n` bytes from `i` on. -/
def readBytes (p : Page) : Nat → Int16 → Except Fault (List Byte)
  | 0, _ => .ok []
  | n + 1, i => do return (← p.buf i) :: (← readBytes p n (i + 1))

/-- The bytes of an item. -/
def Item.bytes (p : Page) (item : Item) : Except Fault (List Byte) :=
  readBytes p item.dsize.toInt.toNat item.dptr

/-! ## `delitem` -/

/-- The loop that moves the items below up, with the turns that are left. -/
def moveUp : Nat → Int16 → Int16 → Page → Except Fault (Int16 × Int16 × Page)
  | 0, i1, i2, p => .ok (i1, i2, p)
  | m + 1, i1, i2, p => do
    let i1 := i1 - 1
    let i2 := i2 - 1
    let p ← p.setBuf i2 (← p.buf i1)
    let p ← p.setBuf i1 0
    moveUp m i1 i2 p

/-- The loop over the offsets, with the turns that are left. -/
def chkLoop (p : Page) : Nat → Int16 → Int16 → Except Fault Int16
  | 0, _, t => .ok t
  | m + 1, i, t => do
    let s ← p.sp (i + 1)
    if s > t then .error .abort else chkLoop p m (i + 1) s

/-- `chkblk` comes back from pages that are well formed. -/
def chkblk (p : Page) : Except Fault Unit := do
  let c ← p.sp 0
  let t ← chkLoop p c.toInt.toNat 0 PBLKSIZ
  if t < (c + 1) * 2 then .error .abort else return

end Venix.Dbm
