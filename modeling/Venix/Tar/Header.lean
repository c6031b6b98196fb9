/-
  The header block of an archive (`v7tar.c`): `tomodes`, `checksum`, the part of `putfile` that
  fills the header, and `getdir`.

  The program runs on a host where `char` is signed, `int` has 32 bits and `long` 64. A write
  outside a block gives `none`. A string is the list of its characters, without the NUL.
-/
import Venix.Lib.Numeral

namespace Venix.Tar

open Venix.Lib

def TBLOCK : Nat := 512

def NAMSIZ : Nat := 100

/-- `union hblock`, or a buffer of that size. -/
@[ext]
structure Block where
  bytes : List Int8
  full : bytes.length = TBLOCK

namespace Block

/-- Where the fields of `dbuf` are. -/
def name : Nat := 0
def mode : Nat := 100
def uid : Nat := 108
def gid : Nat := 116
def size : Nat := 124
def mtime : Nat := 136
def chksum : Nat := 148
def linkflag : Nat := 156
def linkname : Nat := 157

def zero : Block := ⟨List.replicate TBLOCK 0, List.length_replicate⟩

/-- Stores characters from `off` on. -/
def poke (b : Block) (off : Nat) (l : List Int8) : Option Block :=
  if h : off + l.length ≤ TBLOCK then
    some ⟨b.bytes.take off ++ l ++ b.bytes.drop (off + l.length), by
      have := b.full
      simp only [List.length_append, List.length_take, List.length_drop]
      omega⟩
  else none

/-- The characters from `off` on. -/
def suffix (b : Block) (off : Nat) : List Int8 := b.bytes.drop off

/-- The string at `off`. -/
def string (b : Block) (off : Nat) : List Int8 := (b.suffix off).takeWhile (· ≠ 0)

end Block

/-! ## `sprintf` and `sscanf` -/

def digit (d : Nat) : Int8 := Int8.ofNat (48 + d)

/-- `%wo` or `%wlo`, what comes after it in the format, and the NUL. -/
def sprintf (w : Nat) (n : Nat) (tail : List Int8) : List Int8 :=
  let l := (numeral 8 n).map digit
  List.replicate (w - l.length) 32 ++ l ++ tail ++ [0]

def isspace (c : Int8) : Bool := c = 32 ∨ (9 ≤ c ∧ c ≤ 13)

def isoctal (c : Int8) : Bool := 48 ≤ c ∧ c ≤ 55

/-- `%o` or `%lo`; nothing is stored where there is no digit. (No field has a number of more than
64 bits.) -/
def sscanf (l : List Int8) : Option Int := do
  let l := l.dropWhile isspace
  let (sign, l) : Int × List Int8 :=
    if l.head? = some 43 then (1, l.tail) else if l.head? = some 45 then (-1, l.tail) else (1, l)
  let ds := l.takeWhile isoctal
  if ds = [] then none
  else return sign * (ofNumeral 8 (ds.map fun c => (c - 48).toNatClampNeg) : Nat)

/-! ## Writing a header -/

/-- What is used of `struct stat`. -/
structure Stat where
  st_dev : Nat
  st_ino : Nat
  st_nlink : Nat
  st_mode : UInt32
  st_uid : UInt32
  st_gid : UInt32
  st_size : Int64
  st_mtime : Int64

def tomodes (sp : Stat) : Option Block := do
  let b := Block.zero
  let b ← b.poke Block.mode (sprintf 6 (sp.st_mode &&& 0o7777).toNat [32])
  let b ← b.poke Block.uid (sprintf 6 sp.st_uid.toNat [32])
  let b ← b.poke Block.gid (sprintf 6 sp.st_gid.toNat [32])
  let b ← b.poke Block.size (sprintf 11 sp.st_size.toUInt64.toNat [32])
  b.poke Block.mtime (sprintf 11 sp.st_mtime.toUInt64.toNat [32])

/-- The sum of characters, as signed numbers; that of a block is always an `int`. -/
def total (l : List Int8) : Int := (l.map Int8.toInt).sum

/-- The field of the sum is blanked. -/
def checksum (b : Block) : Option (Block × Int) := do
  let b ← b.poke Block.chksum (List.replicate 8 32)
  return (b, total b.bytes)

/-- `sprintf(dblock.dbuf.chksum, "%6o", checksum())`. -/
def putChecksum (b : Block) : Option Block := do
  let (b, sum) ← checksum b
  b.poke Block.chksum (sprintf 6 (sum % 2 ^ 32).toNat [])

/-- The loop that copies the name, from index `i` on; the result has the last `i`. -/
def copyName : List Int8 → Nat → Block → Option (Nat × Block)
  | [], i, b => do
    let b ← b.poke (Block.name + i) [0]
    return (i, b)
  | c :: cs, i, b => do
    let b ← b.poke (Block.name + i) [c]
    if i < NAMSIZ then copyName cs (i + 1) b else return (i, b)

/-- `tomodes` and the copy of the name in `putfile`; `none` inside where the name is too long. -/
def nameHeader (sp : Stat) (longname : List Int8) : Option (Option Block) := do
  let b ← tomodes sp
  let (i, b) ← copyName longname 0 b
  if NAMSIZ ≤ i then return none else return some b

/-- The header of a file that is not a link. -/
def fileHeader (sp : Stat) (longname : List Int8) : Option (Option Block) := do
  match ← nameHeader sp longname with
  | none => return none
  | some b => return some (← putChecksum b)

/-! ## Reading a header -/

/-- `%o` into an `int`, whose bits are those of the number. -/
def scanInt (l : List Int8) (i : UInt32) : UInt32 :=
  match sscanf l with
  | none => i
  | some v => UInt32.ofInt v

/-- `%lo` into a `long`. -/
def scanLong (l : List Int8) (x : Int64) : Int64 :=
  match sscanf l with
  | none => x
  | some v => Int64.ofInt v

/-- What `getdir` leaves in `dblock`, `stbuf` and `chksum`. -/
structure Dir where
  dblock : Block
  stbuf : Stat
  chksum : UInt32

/-- The fields of a header; `i` is the variable of `getdir`. -/
def getFields (d : Dir) (i : UInt32) : Dir :=
  let b := d.dblock
  let i := scanInt (b.suffix Block.mode) i
  let st_mode := i
  let i := scanInt (b.suffix Block.uid) i
  let st_uid := i
  let i := scanInt (b.suffix Block.gid) i
  { dblock := b
    stbuf :=
      { d.stbuf with
        st_mode := st_mode
        st_uid := st_uid
        st_gid := i
        st_size := scanLong (b.suffix Block.size) d.stbuf.st_size
        st_mtime := scanLong (b.suffix Block.mtime) d.stbuf.st_mtime }
    chksum := scanInt (b.suffix Block.chksum) d.chksum }

inductive Verdict where
  | empty
  | accepted
  | rejected
  deriving DecidableEq

/-- What `getdir` does with the block `b`. -/
def getdir (b : Block) (d : Dir) (i : UInt32) : Option (Verdict × Dir) := do
  let d := { d with dblock := b }
  if (b.suffix Block.name).head? = some 0 then return (.empty, d)
  let d := getFields d i
  let (b, sum) ← checksum d.dblock
  let d := { d with dblock := b }
  if d.chksum.toInt32.toInt ≠ sum then return (.rejected, d)
  return (.accepted, d)

end Venix.Tar
