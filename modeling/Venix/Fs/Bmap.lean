/-
  `bmap` (`subr.c`): the physical block of a logical block of a file, allocated on a write.

  The model follows the source: the ten direct addresses, the search for the level of
  indirection, the address in the inode and the walk through the indirect blocks. As in
  `Venix.Fs.Alloc` there are no I/O errors, so the `B_ERROR` exit of the walk is not taken.
  The block numbers inside a file are far below `2^31`; once `bn` is known not to be negative
  they are natural numbers.
-/
import Venix.Fs.FreeList

namespace Venix.Fs

open Venix.Lib

/-- `NADDR`: addresses in an inode, of which the last three are indirect. -/
def naddr : Nat := 13

/-- `NINDIR`: addresses in an indirect block. -/
def nindir : Nat := 128

def nshift : Nat := 7

def nmask : Nat := 127

def iupd : BitVec 8 := 0x02
def iacc : BitVec 8 := 0x04
def ichg : BitVec 8 := 0x40

/-- The file types of `i_mode & IFMT`. -/
inductive Ifmt where
  | ifdir | ifchr | ifblk | ifreg | ifmpc | ifmpb
  deriving DecidableEq, Repr

/-- The in-core inode, less the fields that reading and writing do not use. -/
structure Inode where
  iFlag : BitVec 8
  iType : Ifmt
  iSize : Int
  iAddr : Arr Daddr naddr
  iLastr : Int

inductive Rwflg where
  | bRead | bWrite
  deriving DecidableEq, Repr

/-- The search for the level of indirection: `j`, the shift and what is left of `bn`. -/
def levelLoop : Nat → Nat → Nat → Nat → Nat × Nat × Nat
  | 0, sh, _, bn => (0, sh, bn)
  | j + 1, sh, nb, bn =>
    let sh := sh + nshift
    let nb := nb <<< nshift
    if bn < nb then (j + 1, sh, bn) else levelLoop j sh nb (bn - nb)

/-- The walk through `k` indirect blocks from block `nb`. `none` is the return of `-1`; else
    the address found, with the slot and the block it was found in. -/
def indirLoop (rw : Rwflg) (bn : Nat) :
    Nat → Nat → Daddr → Nat × Block → Vol → Option (Daddr × Nat × Block) × Vol
  | 0, _, nb, last, v => (some (nb, last), v)
  | k + 1, sh, nb, _, v =>
    let bap := v.disk nb
    let sh := sh - nshift
    let i := (bn >>> sh) &&& nmask
    let nb' := bap.getLong (4 * i)
    if nb' = 0 then
      if rw = .bRead then (none, v)
      else match alloc v with
        | (none, v) => (none, v)
        | (some nbp, v) =>
          let v := v.bwrite nbp
          let bap := bap.putLong (4 * i) nbp.bBlkno
          let v := v.bwrite ⟨nb, bap⟩
          indirLoop rw bn k sh nbp.bBlkno (i, bap) v
    else indirLoop rw bn k sh nb' (i, bap) v

/-- Slot `i` of the inode, filled with a new block if it is empty and `rw` is a write. -/
def inodeSlot (v : Vol) (ip : Inode) (rw : Rwflg) (i : Nat) : Option Daddr × Vol × Inode :=
  let nb := ip.iAddr.get i
  if nb = 0 then
    if rw = .bRead then (none, v, ip)
    else match alloc v with
      | (none, v) => (none, v, ip)
      | (some bp, v) =>
        (some bp.bBlkno, v.bwrite bp,
          { ip with iAddr := ip.iAddr.put i bp.bBlkno, iFlag := ip.iFlag ||| (iupd ||| ichg) })
  else (some nb, v, ip)

def bmap (v : Vol) (ip : Inode) (bn : Int) (rw : Rwflg) : Daddr × Vol × Inode :=
  if bn < 0 then (0, { v with uError := some .efbig }, ip)
  else
    let v := { v with rablock := 0 }
    let bn := bn.toNat
    if bn < naddr - 3 then
      match inodeSlot v ip rw bn with
      | (none, v, ip) => (-1, v, ip)
      | (some nb, v, ip) =>
        (nb, if bn < naddr - 4 then { v with rablock := ip.iAddr.get (bn + 1) } else v, ip)
    else
      match levelLoop 3 0 1 (bn - (naddr - 3)) with
      | (0, _, _) => (0, { v with uError := some .efbig }, ip)
      | (j, sh, bn) =>
        match inodeSlot v ip rw (naddr - j) with
        | (none, v, ip) => (-1, v, ip)
        | (some nb, v, ip) =>
          match indirLoop rw bn (4 - j) sh nb (0, Bytes.zero) v with
          | (none, v) => (-1, v, ip)
          | (some (nb, i, bap), v) =>
            (nb, if i < nindir - 1 then { v with rablock := bap.getLong (4 * (i + 1)) } else v, ip)

end Venix.Fs
